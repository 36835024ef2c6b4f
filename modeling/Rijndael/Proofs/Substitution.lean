import Rijndael.Substitution
import Rijndael.Proofs.ByteTable
import Rijndael.Proofs.Standard

/-!
# The substitution is that of the standard

The forward table is computed from inversion and an affine map by rotations,
the backward table by inverting the forward one. The affine map has an inverse
of the same kind, so the forward table is injective and the backward table
undoes it.

## Main results

* `subByte_eq_standard`, `invSubByte_eq_standard` — both tables hold the
  substitution of the standard.
* `invSubByte_subByte`, `subByte_invSubByte` — the tables undo each other.
-/

namespace Rijndael

open Rijndael.Field (element byteEquiv)

/-- Bit `i` of the affine map is the sum of bits `i`, `i + 4`, …, `i + 7` and
the bit of the constant: rotations to the left name the same bits. -/
theorem affine_eq_standard (b : UInt8) : affine b = Standard.affine b := by
  revert b
  apply ByteTable.forall_byte
  decide +kernel

/-- The affine map of the S-box can be undone. -/
private theorem Standard.invAffine_affine (b : UInt8) :
    Standard.invAffine (Standard.affine b) = b := by
  revert b
  apply ByteTable.forall_byte
  decide +kernel

/-- The inverse in the field, with zero for zero, is what the power `254` computes. -/
private theorem Standard.invertByte_eq_inv (b : UInt8) : Standard.invertByte b = Field.inv b :=
  Field.byteEquiv_symm_eq (Field.element_inv b)

private theorem Standard.invertByte_invertByte (b : UInt8) :
    Standard.invertByte (Standard.invertByte b) = b := by
  have helement : element (Standard.invertByte b) = (element b)⁻¹ :=
    byteEquiv.apply_symm_apply _
  apply Field.byteEquiv_symm_eq
  rw [helement, inv_inv]

theorem Standard.invSubByte_subByte (b : UInt8) :
    Standard.invSubByte (Standard.subByte b) = b := by
  rw [Standard.invSubByte, Standard.subByte, Standard.invAffine_affine,
    Standard.invertByte_invertByte]

/-- The forward table holds the substitution of the standard. -/
theorem subByte_eq_standard (b : UInt8) : subByte b = Standard.subByte b := by
  rw [subByte_eq, affine_eq_standard, Standard.subByte, Standard.invertByte_eq_inv]

/-- Different bytes stand at different places of the S-box, so that the table is a
permutation. -/
theorem subByte_injective : Function.Injective subByte := by
  have hleft : Function.LeftInverse Standard.invSubByte subByte := by
    intro b
    rw [subByte_eq_standard, Standard.invSubByte_subByte]
  exact hleft.injective

/-- The inverse table undoes the S-box. -/
@[simp] theorem invSubByte_subByte (b : UInt8) : invSubByte (subByte b) = b :=
  ByteTable.get_invert_get subByte_injective b

@[simp] theorem subByte_invSubByte (b : UInt8) : subByte (invSubByte b) = b :=
  ByteTable.get_get_invert subByte_injective b

theorem subByte_surjective : Function.Surjective subByte :=
  Function.RightInverse.surjective subByte_invSubByte

/-- The backward table holds the inverse substitution of the standard. -/
theorem invSubByte_eq_standard (b : UInt8) : invSubByte b = Standard.invSubByte b := by
  obtain ⟨a, rfl⟩ := subByte_surjective b
  rw [invSubByte_subByte, subByte_eq_standard, Standard.invSubByte_subByte]

end Rijndael
