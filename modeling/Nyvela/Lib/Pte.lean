import Mathlib.Algebra.Group.Nat.Defs
import Mathlib.Data.Nat.Notation
import Mathlib.Tactic.SplitIfs

/-!
# Page-table entries

Bits 0, 1 and 2 of a 64-bit entry say that it is present, writable and open to
user code; the bits from 12 on give the frame it leads to. An address is cut
into four indices of nine bits.
-/

namespace Nyvela.Pte

def present (e : BitVec 64) : Bool := e &&& 0x01#64 != 0#64
def writable (e : BitVec 64) : Bool := e &&& 0x02#64 != 0#64
def user (e : BitVec 64) : Bool := e &&& 0x04#64 != 0#64

/-- The address part `e & ~0xFFF`. -/
def addr (e : BitVec 64) : BitVec 64 := e &&& ~~~0xFFF#64

/-- The frame that starts at the address part. -/
def frame (e : BitVec 64) : ℕ := (addr e).toNat / 4096

def pml4Index (virt : BitVec 64) : ℕ := ((virt >>> 39) &&& 0x1FF#64).toNat
def pdptIndex (virt : BitVec 64) : ℕ := ((virt >>> 30) &&& 0x1FF#64).toNat
def pdIndex (virt : BitVec 64) : ℕ := ((virt >>> 21) &&& 0x1FF#64).toNat
def ptIndex (virt : BitVec 64) : ℕ := ((virt >>> 12) &&& 0x1FF#64).toNat

/-! ## Bits -/

theorem and_twoPow_ne_zero (e : BitVec 64) (k : ℕ) :
    (e &&& BitVec.twoPow 64 k != 0#64) = e.getLsbD k := by
  rw [BitVec.and_twoPow]
  split_ifs with h
  · rw [h, bne_iff_ne]
    intro h0
    have hk : k < 64 := BitVec.lt_of_getLsbD h
    have := congrArg (BitVec.getLsbD · k) h0
    simp [hk] at this
  · simp [Bool.eq_false_iff.mpr h]

theorem present_eq (e : BitVec 64) : present e = e.getLsbD 0 := and_twoPow_ne_zero e 0

theorem writable_eq (e : BitVec 64) : writable e = e.getLsbD 1 := and_twoPow_ne_zero e 1

theorem user_eq (e : BitVec 64) : user e = e.getLsbD 2 := and_twoPow_ne_zero e 2

theorem addr_eq_shift (e : BitVec 64) : addr e = (e >>> 12) <<< 12 := by
  have hmask : ∀ k : Fin 64, (~~~0xFFF#64).getLsbD k = decide (12 ≤ k.val) := by decide
  apply BitVec.eq_of_getLsbD_eq
  intro k hk
  rw [addr, BitVec.getLsbD_and, hmask ⟨k, hk⟩, BitVec.getLsbD_shiftLeft, BitVec.getLsbD_ushiftRight]
  by_cases h : 12 ≤ k
  · simp [h, hk, Nat.not_lt.mpr h]
  · simp [h, Nat.lt_of_not_le h]

theorem addr_toNat (e : BitVec 64) : (addr e).toNat = e.toNat / 4096 * 4096 := by
  have he := e.isLt
  rw [addr_eq_shift, BitVec.toNat_shiftLeft, BitVec.toNat_ushiftRight, Nat.shiftRight_eq_div_pow,
    Nat.shiftLeft_eq]
  omega

theorem frame_eq (e : BitVec 64) : frame e = e.toNat / 4096 := by
  rw [frame, addr_toNat]
  omega

theorem frame_lt (e : BitVec 64) : frame e < 2 ^ 52 := by
  have he := e.isLt
  rw [frame_eq]
  omega

theorem addr_toNat_eq_frame (e : BitVec 64) : (addr e).toNat = frame e * 4096 := by
  rw [addr_toNat, frame_eq]

theorem frame_eq_shift (e : BitVec 64) : frame e = (e >>> 12).toNat := by
  rw [frame_eq, BitVec.toNat_ushiftRight, Nat.shiftRight_eq_div_pow]

@[simp] theorem frame_addr (e : BitVec 64) : frame (addr e) = frame e := by
  rw [frame_eq, addr_toNat, frame_eq]
  omega

@[simp] theorem present_addr (e : BitVec 64) : present (addr e) = false := by
  rw [present_eq, addr_eq_shift, BitVec.getLsbD_shiftLeft]
  simp

@[simp] theorem user_addr (e : BitVec 64) : user (addr e) = false := by
  rw [user_eq, addr_eq_shift, BitVec.getLsbD_shiftLeft]
  simp

@[simp] theorem present_or (a b : BitVec 64) : present (a ||| b) = (present a || present b) := by
  simp only [present_eq, BitVec.getLsbD_or]

@[simp] theorem user_or (a b : BitVec 64) : user (a ||| b) = (user a || user b) := by
  simp only [user_eq, BitVec.getLsbD_or]

/-- Flag bits do not change where an entry leads. -/
theorem frame_or (a : BitVec 64) {b : BitVec 64} (hb : b.toNat < 4096) :
    frame (a ||| b) = frame a := by
  have hzero : b >>> 12 = 0#64 := by
    apply BitVec.eq_of_toNat_eq
    rw [BitVec.toNat_ushiftRight, Nat.shiftRight_eq_div_pow]
    simpa using Nat.div_eq_of_lt hb
  rw [frame_eq_shift, frame_eq_shift, BitVec.ushiftRight_or_distrib, hzero, BitVec.or_zero]

@[simp] theorem writable_or (a b : BitVec 64) : writable (a ||| b) = (writable a || writable b) := by
  simp only [writable_eq, BitVec.getLsbD_or]

/-- `e'` is `e`, or `e` opened to users. -/
def Opened (e e' : BitVec 64) : Prop := e' = e ∨ e' = e ||| 0x04

namespace Opened

variable {e e' e'' : BitVec 64}

theorem refl (e : BitVec 64) : Opened e e := .inl rfl

theorem trans (h : Opened e e') (h' : Opened e' e'') : Opened e e'' := by
  rcases h with rfl | rfl <;> rcases h' with rfl | rfl
  · exact .inl rfl
  · exact .inr rfl
  · exact .inr rfl
  · exact .inr (by rw [BitVec.or_assoc, BitVec.or_self])

theorem present (h : Opened e e') : Pte.present e' = Pte.present e := by
  rcases h with rfl | rfl
  · rfl
  · rw [present_or, show Pte.present 0x04 = false from by decide, Bool.or_false]

theorem frame (h : Opened e e') : Pte.frame e' = Pte.frame e := by
  rcases h with rfl | rfl
  · rfl
  · exact frame_or _ (by decide)

theorem writable (h : Opened e e') : Pte.writable e' = Pte.writable e := by
  rcases h with rfl | rfl
  · rfl
  · rw [writable_or, show Pte.writable 0x04 = false from by decide, Bool.or_false]

theorem user (h : Opened e e') (hu : Pte.user e = true) : Pte.user e' = true := by
  rcases h with rfl | rfl
  · exact hu
  · rw [user_or, hu, Bool.true_or]

end Opened

/-! ## The address of a frame -/

/-- The first address of frame `f`. -/
def ofFrame (f : ℕ) : BitVec 64 := BitVec.ofNat 64 (f * 4096)

theorem ofFrame_toNat {f : ℕ} (hf : f < 2 ^ 52) : (ofFrame f).toNat = f * 4096 := by
  rw [ofFrame, BitVec.toNat_ofNat]
  omega

theorem addr_ofFrame (f : ℕ) : addr (ofFrame f) = ofFrame f := by
  apply BitVec.eq_of_toNat_eq
  rw [addr_toNat, ofFrame, BitVec.toNat_ofNat]
  omega

theorem frame_ofFrame {f : ℕ} (hf : f < 2 ^ 52) : frame (ofFrame f) = f := by
  rw [frame_eq, ofFrame_toNat hf]
  omega

theorem addr_eq_ofFrame (e : BitVec 64) : addr e = ofFrame (frame e) := by
  apply BitVec.eq_of_toNat_eq
  rw [ofFrame_toNat (frame_lt e), addr_toNat_eq_frame]

@[simp] theorem addr_addr (e : BitVec 64) : addr (addr e) = addr e := by
  rw [addr_eq_ofFrame e, addr_ofFrame]

@[simp] theorem present_ofFrame (f : ℕ) : present (ofFrame f) = false := by
  rw [← addr_ofFrame, present_addr]

@[simp] theorem user_ofFrame (f : ℕ) : user (ofFrame f) = false := by
  rw [← addr_ofFrame, user_addr]

/-! ## Indices -/

theorem and_511_toNat (x : BitVec 64) : (x &&& 0x1FF#64).toNat = x.toNat % 512 := by
  rw [BitVec.toNat_and]
  exact Nat.and_two_pow_sub_one_eq_mod x.toNat 9

theorem pml4Index_eq (virt : BitVec 64) : pml4Index virt = virt.toNat / 2 ^ 39 % 512 := by
  rw [pml4Index, and_511_toNat, BitVec.toNat_ushiftRight, Nat.shiftRight_eq_div_pow]

theorem pdptIndex_eq (virt : BitVec 64) : pdptIndex virt = virt.toNat / 2 ^ 30 % 512 := by
  rw [pdptIndex, and_511_toNat, BitVec.toNat_ushiftRight, Nat.shiftRight_eq_div_pow]

theorem pdIndex_eq (virt : BitVec 64) : pdIndex virt = virt.toNat / 2 ^ 21 % 512 := by
  rw [pdIndex, and_511_toNat, BitVec.toNat_ushiftRight, Nat.shiftRight_eq_div_pow]

theorem ptIndex_eq (virt : BitVec 64) : ptIndex virt = virt.toNat / 2 ^ 12 % 512 := by
  rw [ptIndex, and_511_toNat, BitVec.toNat_ushiftRight, Nat.shiftRight_eq_div_pow]

theorem pml4Index_lt (virt : BitVec 64) : pml4Index virt < 512 := by
  rw [pml4Index_eq]
  exact Nat.mod_lt _ (by decide)

theorem pdptIndex_lt (virt : BitVec 64) : pdptIndex virt < 512 := by
  rw [pdptIndex_eq]
  exact Nat.mod_lt _ (by decide)

theorem pdIndex_lt (virt : BitVec 64) : pdIndex virt < 512 := by
  rw [pdIndex_eq]
  exact Nat.mod_lt _ (by decide)

theorem ptIndex_lt (virt : BitVec 64) : ptIndex virt < 512 := by
  rw [ptIndex_eq]
  exact Nat.mod_lt _ (by decide)

end Nyvela.Pte
