import Mathlib.Algebra.Group.Nat.Defs
import Mathlib.Data.Set.Insert
import Mathlib.Logic.Function.Basic

/-!
# Sets of numbers packed into bytes

A byte array read as a set: `i` is a member when bit `i % 8` of byte `i / 8` is
one. The three operations are the mask operations that C code writes for such an
array, and each is one operation on the set.
-/

namespace Nyvela

/-- A byte array, indexed from zero. -/
abbrev Bitmap := ℕ → BitVec 8

namespace Bitmap

def mask (i : ℕ) : BitVec 8 := 1#8 <<< (i % 8)

def test (b : Bitmap) (i : ℕ) : Bool := b (i / 8) &&& mask i != 0#8

def set (b : Bitmap) (i : ℕ) : Bitmap := Function.update b (i / 8) (b (i / 8) ||| mask i)

def clear (b : Bitmap) (i : ℕ) : Bitmap := Function.update b (i / 8) (b (i / 8) &&& ~~~mask i)

/-- The set that the array stands for. -/
def members (b : Bitmap) : Set ℕ := {i | b.test i = true}

@[simp] theorem mem_members (b : Bitmap) (i : ℕ) : i ∈ b.members ↔ b.test i = true := Iff.rfl

theorem mask_getLsbD (i k : ℕ) : (mask i).getLsbD k = decide (k = i % 8) := by
  have hi : i % 8 < 8 := Nat.mod_lt _ (by decide)
  rw [mask, ← BitVec.twoPow_eq, BitVec.getLsbD_twoPow]
  by_cases hk : k = i % 8
  · simp [hk, hi]
  · simp [hk, Ne.symm hk]

theorem test_eq_getLsbD (b : Bitmap) (i : ℕ) : b.test i = (b (i / 8)).getLsbD (i % 8) := by
  cases h : (b (i / 8)).getLsbD (i % 8) with
  | false =>
    have hz : b (i / 8) &&& mask i = 0#8 := by
      apply BitVec.eq_of_getLsbD_eq
      intro k _
      rw [BitVec.getLsbD_and, mask_getLsbD]
      by_cases hk : k = i % 8
      · simp [hk, h]
      · simp [hk]
    simp [test, hz]
  | true =>
    have hn : b (i / 8) &&& mask i ≠ 0#8 := by
      intro hz
      have hb := congrArg (fun v : BitVec 8 => v.getLsbD (i % 8)) hz
      simp [mask_getLsbD, h] at hb
    simpa [test] using hn

theorem ext_test {b c : Bitmap} (h : ∀ i, b.test i = c.test i) : b = c := by
  funext j
  apply BitVec.eq_of_getLsbD_eq
  intro k hk
  have hd : (8 * j + k) / 8 = j := by omega
  have hm : (8 * j + k) % 8 = k := by omega
  simpa only [test_eq_getLsbD, hd, hm] using h (8 * j + k)

theorem test_set (b : Bitmap) (i j : ℕ) : (b.set i).test j = (b.test j || decide (j = i)) := by
  rw [test_eq_getLsbD, test_eq_getLsbD, set]
  by_cases hd : j / 8 = i / 8
  · rw [hd, Function.update_self, BitVec.getLsbD_or, mask_getLsbD]
    have hji : j % 8 = i % 8 ↔ j = i := by omega
    simp [hji]
  · rw [Function.update_of_ne hd]
    have hne : j ≠ i := fun h => hd (by rw [h])
    simp [hne]

theorem test_clear (b : Bitmap) (i j : ℕ) : (b.clear i).test j = (b.test j && decide (j ≠ i)) := by
  rw [test_eq_getLsbD, test_eq_getLsbD, clear]
  by_cases hd : j / 8 = i / 8
  · have hlt : j % 8 < 8 := Nat.mod_lt _ (by decide)
    rw [hd, Function.update_self, BitVec.getLsbD_and, BitVec.getLsbD_not, mask_getLsbD]
    have hji : j % 8 = i % 8 ↔ j = i := by omega
    simp [hlt, hji]
  · rw [Function.update_of_ne hd]
    have hne : j ≠ i := fun h => hd (by rw [h])
    simp [hne]

theorem members_set (b : Bitmap) (i : ℕ) : (b.set i).members = insert i b.members := by
  ext j
  simp [test_set, or_comm]

theorem members_clear (b : Bitmap) (i : ℕ) : (b.clear i).members = b.members \ {i} := by
  ext j
  simp [test_clear]

theorem set_clear_of_test {b : Bitmap} {i : ℕ} (h : b.test i = true) : (b.clear i).set i = b := by
  apply ext_test
  intro j
  rw [test_set, test_clear]
  by_cases hj : j = i
  · simp [hj, h]
  · simp [hj]

end Bitmap

end Nyvela
