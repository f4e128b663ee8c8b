import Mathlib.Tactic.SplitIfs
import Nyvela.Lib.Memory

/-!
# Memory as frames of 64-bit entries

Little-endian 64-bit words in byte memory, and frames of 4096 bytes seen as 512
such words.
-/

namespace Nyvela.Memory

def read64 (m : Memory) (a : ℕ) : BitVec 64 :=
  m (a + 7) ++ m (a + 6) ++ m (a + 5) ++ m (a + 4) ++ m (a + 3) ++ m (a + 2) ++ m (a + 1) ++ m a

def write64 (m : Memory) (a : ℕ) (v : BitVec 64) : Memory := fun x =>
  if a ≤ x ∧ x < a + 8 then v.extractLsb' (8 * (x - a)) 8 else m x

theorem write64_outside (m : Memory) (a : ℕ) (v : BitVec 64) {x : ℕ} (h : x < a ∨ a + 8 ≤ x) :
    m.write64 a v x = m x := if_neg (by omega)

theorem read64_congr {m m' : Memory} {a a' : ℕ} (h : ∀ i < 8, m' (a' + i) = m (a + i)) :
    m'.read64 a' = m.read64 a := by
  have h0 := h 0 (by decide)
  rw [Nat.add_zero, Nat.add_zero] at h0
  simp only [read64, h0, h 1 (by decide), h 2 (by decide), h 3 (by decide), h 4 (by decide),
    h 5 (by decide), h 6 (by decide), h 7 (by decide)]

theorem getLsbD_read64 (m : Memory) (a : ℕ) {k : ℕ} (hk : k < 64) :
    (m.read64 a).getLsbD k = (m (a + k / 8)).getLsbD (k % 8) := by
  have hcases : k / 8 = 0 ∨ k / 8 = 1 ∨ k / 8 = 2 ∨ k / 8 = 3 ∨ k / 8 = 4 ∨ k / 8 = 5 ∨
      k / 8 = 6 ∨ k / 8 = 7 := by omega
  obtain ⟨r, hr, hkr⟩ : ∃ r, r < 8 ∧ k = 8 * (k / 8) + r := ⟨k % 8, by omega, by omega⟩
  have hmod : k % 8 = r := by omega
  rw [hmod]
  simp only [read64, BitVec.getLsbD_append]
  rcases hcases with h | h | h | h | h | h | h | h <;> rw [h] at hkr ⊢ <;> subst hkr <;>
    simp (disch := omega) only [if_pos, if_neg, Nat.add_zero] <;>
    congr 1 <;> omega

theorem read64_write64 (m : Memory) (a : ℕ) (v : BitVec 64) : (m.write64 a v).read64 a = v := by
  apply BitVec.eq_of_getLsbD_eq
  intro k hk
  rw [getLsbD_read64 _ _ hk, write64, if_pos (by omega), BitVec.getLsbD_extractLsb',
    decide_eq_true (Nat.mod_lt k (by decide)), Bool.true_and]
  congr 1
  omega

theorem read64_write64_of_disjoint (m : Memory) {a b : ℕ} (v : BitVec 64)
    (h : a + 8 ≤ b ∨ b + 8 ≤ a) : (m.write64 a v).read64 b = m.read64 b := by
  apply read64_congr
  intro i hi
  exact write64_outside _ _ _ (by omega)

/-! ## 32-bit words -/

def read32 (m : Memory) (a : ℕ) : BitVec 32 := m (a + 3) ++ m (a + 2) ++ m (a + 1) ++ m a

theorem read32_congr {m m' : Memory} {a a' : ℕ} (h : ∀ i < 4, m' (a' + i) = m (a + i)) :
    m'.read32 a' = m.read32 a := by
  have h0 := h 0 (by decide)
  rw [Nat.add_zero, Nat.add_zero] at h0
  simp only [read32, h0, h 1 (by decide), h 2 (by decide), h 3 (by decide)]

theorem append_eq_zero_iff {v w : ℕ} (x : BitVec v) (y : BitVec w) :
    x ++ y = 0#(v + w) ↔ x = 0#v ∧ y = 0#w := by
  simp only [← BitVec.toNat_inj, BitVec.toNat_append, BitVec.toNat_zero, Nat.or_eq_zero_iff,
    Nat.shiftLeft_eq_zero_iff]

/-- A 64-bit word is zero when its halves are. -/
theorem read32_or_eq_zero_iff (m : Memory) (a : ℕ) :
    m.read32 a ||| m.read32 (a + 4) = 0 ↔ m.read64 a = 0 := by
  have h32 : ∀ a, m.read32 a = 0#32 ↔
      ((m (a + 3) = 0#8 ∧ m (a + 2) = 0#8) ∧ m (a + 1) = 0#8) ∧ m a = 0#8 := by
    intro a
    rw [← append_eq_zero_iff, ← append_eq_zero_iff, ← append_eq_zero_iff]
    rfl
  have h64 : m.read64 a = 0#64 ↔
      ((((((m (a + 7) = 0#8 ∧ m (a + 6) = 0#8) ∧ m (a + 5) = 0#8) ∧ m (a + 4) = 0#8) ∧
        m (a + 3) = 0#8) ∧ m (a + 2) = 0#8) ∧ m (a + 1) = 0#8) ∧ m a = 0#8 := by
    iterate 7 rw [← append_eq_zero_iff]
    rfl
  show m.read32 a ||| m.read32 (a + 4) = 0#32 ↔ m.read64 a = 0#64
  rw [BitVec.or_eq_zero_iff, h32, h32, h64, and_comm]
  simp only [and_assoc, Nat.add_assoc, Nat.reduceAdd]

/-! ## Frames -/

/-- Word `i` of frame `f`. -/
def entry (m : Memory) (f i : ℕ) : BitVec 64 := m.read64 (f * 4096 + 8 * i)

def setEntry (m : Memory) (f i : ℕ) (e : BitVec 64) : Memory := m.write64 (f * 4096 + 8 * i) e

/-- Empty memory holds empty entries. -/
theorem entry_zero (f i : ℕ) : entry (fun _ => 0) f i = 0 := by
  simp only [entry, read64]
  decide

/-- `memset(f, 0, 4096)`. -/
def zeroFrame (m : Memory) (f : ℕ) : Memory := m.memset (f * 4096) 0 4096

/-- `memcpy(dest, src, 4096)`. -/
def copyFrame (m : Memory) (dest src : ℕ) : Memory := m.memcpy (dest * 4096) (src * 4096) 4096

theorem entry_setEntry (m : Memory) {f i g j : ℕ} (e : BitVec 64) (hi : i < 512) (hj : j < 512) :
    (m.setEntry f i e).entry g j = if g = f ∧ j = i then e else m.entry g j := by
  unfold entry setEntry
  split_ifs with h
  · rw [h.1, h.2, read64_write64]
  · apply read64_write64_of_disjoint
    omega

theorem setEntry_apply_of_ne (m : Memory) {f i a : ℕ} (e : BitVec 64) (hi : i < 512)
    (h : a / 4096 ≠ f) : m.setEntry f i e a = m a := write64_outside _ _ _ (by omega)

theorem zeroFrame_apply_of_ne (m : Memory) {f a : ℕ} (h : a / 4096 ≠ f) : m.zeroFrame f a = m a := by
  rw [zeroFrame, memset_apply, if_neg (by omega)]

theorem copyFrame_apply_of_ne (m : Memory) {dest a : ℕ} (src : ℕ) (h : a / 4096 ≠ dest) :
    m.copyFrame dest src a = m a := memcpy_outside _ _ _ _ (by omega)

theorem copyFrame_apply (m : Memory) {dest src k : ℕ} (h : dest ≠ src) (hk : k < 4096) :
    m.copyFrame dest src (dest * 4096 + k) = m (src * 4096 + k) :=
  memcpy_inside _ (by omega) hk

/-- The entries of a frame are determined by its bytes. -/
theorem entry_congr {m m' : Memory} {f : ℕ}
    (h : ∀ k < 4096, m' (f * 4096 + k) = m (f * 4096 + k)) {i : ℕ} (hi : i < 512) :
    m'.entry f i = m.entry f i := by
  apply read64_congr
  intro k hk
  rw [Nat.add_assoc]
  exact h _ (by omega)

/-- The entries of frames whose bytes are kept. -/
theorem entry_of_frames {m m' : Memory} {l : List ℕ} (h : ∀ a, a / 4096 ∈ l → m' a = m a)
    {f i : ℕ} (hf : f ∈ l) (hi : i < 512) : m'.entry f i = m.entry f i := by
  apply entry_congr _ hi
  intro k hk
  apply h
  rwa [show (f * 4096 + k) / 4096 = f by omega]

theorem entry_zeroFrame (m : Memory) (f g : ℕ) {i : ℕ} (hi : i < 512) :
    (m.zeroFrame f).entry g i = if g = f then 0 else m.entry g i := by
  split_ifs with h
  · apply BitVec.eq_of_getLsbD_eq
    intro k hk
    rw [entry, getLsbD_read64 _ _ hk, zeroFrame, memset_apply, if_pos (by omega)]
    simp
  · apply entry_congr _ hi
    intro k hk
    exact zeroFrame_apply_of_ne _ (by omega)

theorem entry_copyFrame_of_ne (m : Memory) {dest g : ℕ} (src : ℕ) (h : g ≠ dest) {i : ℕ}
    (hi : i < 512) : (m.copyFrame dest src).entry g i = m.entry g i := by
  apply entry_congr _ hi
  intro k hk
  exact copyFrame_apply_of_ne _ _ (by omega)

theorem entry_copyFrame (m : Memory) {dest src : ℕ} (h : dest ≠ src) (g : ℕ) {i : ℕ}
    (hi : i < 512) :
    (m.copyFrame dest src).entry g i = if g = dest then m.entry src i else m.entry g i := by
  split_ifs with hg
  · unfold entry
    apply BitVec.eq_of_getLsbD_eq
    intro k hk
    rw [getLsbD_read64 _ _ hk, getLsbD_read64 _ _ hk, hg, Nat.add_assoc, Nat.add_assoc,
      copyFrame_apply _ h (by omega)]
  · exact entry_copyFrame_of_ne m src hg hi

end Nyvela.Memory
