import Mathlib.Algebra.Group.Nat.Defs
import Mathlib.Data.Nat.Notation
import Mathlib.Logic.Function.Basic

/-!
# Byte memory

Bytes at natural-number addresses, with the forward byte copy of a C `memcpy` and the string
moves of the processor.
-/

namespace Nyvela

abbrev Memory := ℕ → BitVec 8

namespace Memory

def store (m : Memory) (a : ℕ) (v : BitVec 8) : Memory := Function.update m a v

def memcpy (m : Memory) (dest src n : ℕ) : Memory :=
  (List.range n).foldl (fun m i => m.store (dest + i) (m (src + i))) m

def memset (m : Memory) (dest : ℕ) (v : BitVec 8) (n : ℕ) : Memory :=
  (List.range n).foldl (fun m i => m.store (dest + i) v) m

def write (m : Memory) (dest : ℕ) : List (BitVec 8) → Memory
  | [] => m
  | v :: l => write (m.store dest v) (dest + 1) l

def read (m : Memory) (src n : ℕ) : List (BitVec 8) := (List.range n).map fun i => m (src + i)

@[simp] theorem store_self (m : Memory) (a : ℕ) (v : BitVec 8) : m.store a v a = v :=
  Function.update_self ..

theorem store_of_ne (m : Memory) {a b : ℕ} (v : BitVec 8) (h : b ≠ a) : m.store a v b = m b :=
  Function.update_of_ne h ..

theorem memcpy_succ (m : Memory) (dest src n : ℕ) :
    m.memcpy dest src (n + 1) =
      (m.memcpy dest src n).store (dest + n) (m.memcpy dest src n (src + n)) := by
  simp [memcpy, List.range_succ]

theorem memcpy_outside (m : Memory) (dest src n : ℕ) {a : ℕ} (h : a < dest ∨ dest + n ≤ a) :
    m.memcpy dest src n a = m a := by
  induction n with
  | zero => rfl
  | succ n ih =>
    rw [memcpy_succ, store_of_ne _ _ (by omega)]
    exact ih (by omega)

/-- The copy of a range that the destination does not overlap. -/
theorem memcpy_inside (m : Memory) {dest src n : ℕ}
    (hdisj : src + n ≤ dest ∨ dest + n ≤ src) {i : ℕ} (hi : i < n) :
    m.memcpy dest src n (dest + i) = m (src + i) := by
  induction n with
  | zero => omega
  | succ n ih =>
    rw [memcpy_succ]
    by_cases hin : i = n
    · rw [hin, store_self]
      exact memcpy_outside m dest src n (by omega)
    · rw [store_of_ne _ _ (by omega)]
      exact ih (by omega) (by omega)

theorem memset_succ (m : Memory) (dest : ℕ) (v : BitVec 8) (n : ℕ) :
    m.memset dest v (n + 1) = (m.memset dest v n).store (dest + n) v := by
  simp [memset, List.range_succ]

theorem memset_apply (m : Memory) (dest : ℕ) (v : BitVec 8) (n a : ℕ) :
    m.memset dest v n a = if dest ≤ a ∧ a < dest + n then v else m a := by
  induction n with
  | zero =>
    rw [if_neg (by omega)]
    rfl
  | succ n ih =>
    rw [memset_succ]
    by_cases ha : a = dest + n
    · rw [ha, store_self, if_pos (by omega)]
    · rw [store_of_ne _ _ ha, ih]
      have hiff : (dest ≤ a ∧ a < dest + n) ↔ (dest ≤ a ∧ a < dest + (n + 1)) := by omega
      simp only [hiff]

theorem write_outside (m : Memory) (dest : ℕ) (l : List (BitVec 8)) {a : ℕ}
    (h : a < dest ∨ dest + l.length ≤ a) : m.write dest l a = m a := by
  induction l generalizing m dest with
  | nil => rfl
  | cons v l ih =>
    rw [List.length_cons] at h
    rw [write, ih _ _ (by omega), store_of_ne _ _ (by omega)]

theorem write_inside (m : Memory) (dest : ℕ) (l : List (BitVec 8)) {i : ℕ} (h : i < l.length) :
    m.write dest l (dest + i) = l[i] := by
  induction l generalizing m dest i with
  | nil => simp at h
  | cons v l ih =>
    cases i with
    | zero => rw [write, write_outside _ _ _ (by omega), Nat.add_zero, store_self]; rfl
    | succ i =>
      have hi := ih (m.store dest v) (dest + 1) (i := i) (by simpa using h)
      rw [write, List.getElem_cons_succ, ← hi]
      congr 1
      omega

theorem write_append (m : Memory) (dest : ℕ) (l l' : List (BitVec 8)) :
    m.write dest (l ++ l') = (m.write dest l).write (dest + l.length) l' := by
  induction l generalizing m dest with
  | nil => rfl
  | cons v l ih =>
    rw [List.cons_append, write, ih, write, List.length_cons, Nat.add_right_comm, Nat.add_assoc]

theorem read_succ (m : Memory) (src n : ℕ) :
    m.read src (n + 1) = m src :: m.read (src + 1) n := by
  simp only [read, List.range_succ_eq_map, List.map_cons, List.map_map, Nat.add_zero]
  congr 1
  apply List.map_congr_left
  intro i _
  simp only [Function.comp_apply]
  congr 1
  omega

theorem read_write (m : Memory) (dest : ℕ) (l : List (BitVec 8)) :
    (m.write dest l).read dest l.length = l := by
  induction l generalizing m dest with
  | nil => rfl
  | cons v l ih =>
    rw [List.length_cons, read_succ, write, ih, write_outside _ _ _ (by omega), store_self]

theorem read_congr {m m' : Memory} {src n : ℕ} (h : ∀ i < n, m' (src + i) = m (src + i)) :
    m'.read src n = m.read src n := by
  apply List.map_congr_left
  intro i hi
  exact h i (List.mem_range.mp hi)

theorem read_length (m : Memory) (src n : ℕ) : (m.read src n).length = n := by
  simp only [read, List.length_map, List.length_range]

theorem read_add (m : Memory) (src n k : ℕ) :
    m.read src (n + k) = m.read src n ++ m.read (src + n) k := by
  induction n generalizing src with
  | zero => rw [Nat.zero_add, Nat.add_zero]; rfl
  | succ n ih =>
    rw [Nat.add_right_comm, read_succ, ih, read_succ, List.cons_append, Nat.add_assoc src,
      Nat.add_comm 1]

/-- A copy to where the source is not. -/
theorem memcpy_eq_write (m : Memory) {dest src n : ℕ} (hdisj : src + n ≤ dest ∨ dest + n ≤ src) :
    m.memcpy dest src n = m.write dest (m.read src n) := by
  funext a
  by_cases hin : dest ≤ a ∧ a < dest + n
  · have hlen := m.read_length src n
    have hwrite := m.write_inside dest (m.read src n) (i := a - dest) (by omega)
    have hcopy := m.memcpy_inside hdisj (i := a - dest) (by omega)
    rw [show dest + (a - dest) = a by omega] at hwrite hcopy
    rw [hwrite, hcopy]
    simp only [read, List.getElem_map, List.getElem_range]
  · rw [memcpy_outside _ _ _ _ (by omega), write_outside]
    rw [read_length]
    omega

/-! ## Repeated string moves -/

/-- One element of `w` bytes, read as a whole before it is written. -/
def move (m : Memory) (w dest src : ℕ) : Memory := fun a =>
  if dest ≤ a ∧ a < dest + w then m (src + (a - dest)) else m a

/-- `rep movs` upwards, `n` elements of `w` bytes. -/
def repMovs (w : ℕ) : ℕ → ℕ → ℕ → Memory → Memory
  | 0, _, _, m => m
  | n + 1, dest, src, m => repMovs w n (dest + w) (src + w) (m.move w dest src)

theorem repMovs_outside {w n dest src a : ℕ} (m : Memory) (h : a < dest ∨ dest + w * n ≤ a) :
    repMovs w n dest src m a = m a := by
  induction n generalizing dest src m with
  | zero => rfl
  | succ n ih =>
    rw [Nat.mul_succ] at h
    rw [repMovs, ih _ (by omega), move, if_neg (by omega)]

/-- A byte that no earlier element has overwritten arrives as it was. -/
theorem repMovs_inside {w n dest src i : ℕ} (m : Memory) (hi : i < w * n)
    (h : dest ≤ src ∨ src + i < dest) : repMovs w n dest src m (dest + i) = m (src + i) := by
  induction n generalizing dest src i m with
  | zero => omega
  | succ n ih =>
    rw [Nat.mul_succ] at hi
    rw [repMovs]
    by_cases hw : i < w
    · rw [repMovs_outside _ (by omega), move, if_pos (by omega)]
      congr 1
      omega
    · have hnext : repMovs w n (dest + w) (src + w) (m.move w dest src) (dest + w + (i - w)) =
          m.move w dest src (src + w + (i - w)) := ih _ (by omega) (by omega)
      rw [show dest + w + (i - w) = dest + i by omega, show src + w + (i - w) = src + i by omega]
        at hnext
      rw [hnext, move, if_neg (by omega)]

end Memory

end Nyvela
