import Mathlib.Data.BitVec

/-!
# Fields of words

A field is a range of bits. Code cuts it out with a shift, a mask and a conversion, and a reader
joins the parts again.
-/

namespace BitFields

variable {w : ℕ}

theorem setWidth_ushiftRight (x : BitVec w) (start len : ℕ) :
    (x >>> start).setWidth len = x.extractLsb' start len := by
  apply BitVec.eq_of_getLsbD_eq
  intro i hi
  simp [hi]

theorem setWidth_eq_extractLsb' (x : BitVec w) (len : ℕ) :
    x.setWidth len = x.extractLsb' 0 len := by
  apply BitVec.eq_of_getLsbD_eq
  intro i hi
  simp [hi]

/-- A mask of ones is a conversion. -/
theorem setWidth_and_ones (x : BitVec w) (ones len : ℕ) :
    (x &&& BitVec.ofNat w (2 ^ ones - 1)).setWidth len = (x.setWidth ones).setWidth len := by
  apply BitVec.eq_of_getLsbD_eq
  intro i hi
  simp only [BitVec.getLsbD_setWidth, BitVec.getLsbD_and, BitVec.getLsbD_ofNat,
    Nat.testBit_two_pow_sub_one]
  by_cases hw : i < w
  · simp [hi, hw, Bool.and_comm]
  · simp [BitVec.getLsbD_of_ge x i (by omega)]

/-- A field by shift and mask. -/
theorem setWidth_shift_and_ones (x : BitVec w) (start ones len : ℕ) :
    (x >>> start &&& BitVec.ofNat w (2 ^ ones - 1)).setWidth len =
      (x.extractLsb' start ones).setWidth len := by
  rw [setWidth_and_ones, setWidth_ushiftRight]

/-- A field of a field. -/
theorem extractLsb'_extractLsb' (x : BitVec w) {start₁ len₁ start₂ len₂ : ℕ}
    (h : start₂ + len₂ ≤ len₁) :
    (x.extractLsb' start₁ len₁).extractLsb' start₂ len₂ = x.extractLsb' (start₁ + start₂) len₂ := by
  apply BitVec.eq_of_getLsbD_eq
  intro i hi
  have hlt : start₂ + i < len₁ := by omega
  simp [hi, hlt, Nat.add_assoc]

/-! ## Joining -/

theorem join_32 (x : BitVec 32) :
    x.extractLsb' 24 8 ++ x.extractLsb' 16 8 ++ x.extractLsb' 8 8 ++ x.extractLsb' 0 8 = x := by
  rw [BitVec.extractLsb'_append_extractLsb'_eq_extractLsb' (show 24 = 16 + 8 from rfl),
    BitVec.extractLsb'_append_extractLsb'_eq_extractLsb' (show 16 = 8 + 8 from rfl),
    BitVec.extractLsb'_append_extractLsb'_eq_extractLsb' (show 8 = 0 + 8 from rfl)]
  exact BitVec.extractLsb'_eq_self

theorem join_64 (x : BitVec 64) :
    x.extractLsb' 56 8 ++ x.extractLsb' 48 8 ++ x.extractLsb' 40 8 ++ x.extractLsb' 32 8 ++
      x.extractLsb' 24 8 ++ x.extractLsb' 16 8 ++ x.extractLsb' 8 8 ++ x.extractLsb' 0 8 = x := by
  rw [BitVec.extractLsb'_append_extractLsb'_eq_extractLsb' (show 56 = 48 + 8 from rfl),
    BitVec.extractLsb'_append_extractLsb'_eq_extractLsb' (show 48 = 40 + 8 from rfl),
    BitVec.extractLsb'_append_extractLsb'_eq_extractLsb' (show 40 = 32 + 8 from rfl),
    BitVec.extractLsb'_append_extractLsb'_eq_extractLsb' (show 32 = 24 + 8 from rfl),
    BitVec.extractLsb'_append_extractLsb'_eq_extractLsb' (show 24 = 16 + 8 from rfl),
    BitVec.extractLsb'_append_extractLsb'_eq_extractLsb' (show 16 = 8 + 8 from rfl),
    BitVec.extractLsb'_append_extractLsb'_eq_extractLsb' (show 8 = 0 + 8 from rfl)]
  exact BitVec.extractLsb'_eq_self

/-- Four bits and two bytes of a wider word. -/
theorem join_20 (x : BitVec w) :
    x.extractLsb' 16 4 ++ x.extractLsb' 8 8 ++ x.extractLsb' 0 8 = x.extractLsb' 0 20 := by
  rw [BitVec.extractLsb'_append_extractLsb'_eq_extractLsb' (show 16 = 8 + 8 from rfl),
    BitVec.extractLsb'_append_extractLsb'_eq_extractLsb' (show 8 = 0 + 8 from rfl)]

end BitFields
