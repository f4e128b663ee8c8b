import Mathlib.Data.Nat.ModEq
import Mathlib.Logic.Function.Basic

/-!
# Windows of a circular array

The `count` cells of a circular array of `capacity` cells that start at `head`,
as a list in queue order.
-/

namespace Nyvela.Ring

variable {α : Type*}

def window (cells : ℕ → α) (capacity head count : ℕ) : List α :=
  (List.range count).map fun k => cells ((head + k) % capacity)

@[simp] theorem window_length (cells : ℕ → α) (capacity head count : ℕ) :
    (window cells capacity head count).length = count := by
  simp [window]

@[simp] theorem window_zero (cells : ℕ → α) (capacity head : ℕ) :
    window cells capacity head 0 = [] := rfl

theorem window_succ (cells : ℕ → α) (capacity head count : ℕ) :
    window cells capacity head (count + 1) =
      window cells capacity head count ++ [cells ((head + count) % capacity)] := by
  simp [window, List.range_succ]

theorem window_congr {cells cells' : ℕ → α} {capacity head count : ℕ}
    (h : ∀ k < count, cells' ((head + k) % capacity) = cells ((head + k) % capacity)) :
    window cells' capacity head count = window cells capacity head count := by
  apply List.map_congr_left
  intro k hk
  exact h k (List.mem_range.mp hk)

/-- Two places of one turn of the ring are different cells. -/
theorem index_ne {capacity head j k : ℕ} (hjk : j < k) (hk : k < capacity) :
    (head + j) % capacity ≠ (head + k) % capacity := by
  intro h
  have h1 : (k - j) % capacity = 0 := by
    have := (Nat.ModEq.add_left_cancel' head (show head + j ≡ head + k [MOD capacity] from h))
    have := (Nat.modEq_iff_dvd' (Nat.le_of_lt hjk)).mp this
    exact Nat.mod_eq_zero_of_dvd this
  rw [Nat.mod_eq_of_lt (by omega)] at h1
  omega

/-- Writing the cell behind the window, when there is one, appends to it. -/
theorem window_push (cells : ℕ → α) {capacity head count : ℕ} (v : α) (h : count < capacity) :
    window (Function.update cells ((head + count) % capacity) v) capacity head (count + 1) =
      window cells capacity head count ++ [v] := by
  rw [window_succ, Function.update_self]
  congr 1
  apply window_congr
  intro k hk
  exact Function.update_of_ne (index_ne hk h) ..

/-- Moving the head by one drops the first cell. -/
theorem window_pop (cells : ℕ → α) (capacity head count : ℕ) :
    window cells capacity head (count + 1) =
      cells (head % capacity) :: window cells capacity ((head + 1) % capacity) count := by
  have hshift : ∀ k, ((head + 1) % capacity + k) % capacity = (head + (k + 1)) % capacity := by
    intro k
    rw [Nat.mod_add_mod]
    congr 1
    omega
  simp only [window, List.range_succ_eq_map, List.map_cons, List.map_map, Nat.add_zero, hshift]
  rfl

/-- A copy of the window to the front of a larger array. -/
theorem window_copy {cells cells' : ℕ → α} {capacity capacity' head count : ℕ}
    (hc : count ≤ capacity') (h : ∀ k < count, cells' k = cells ((head + k) % capacity)) :
    window cells' capacity' 0 count = window cells capacity head count := by
  apply List.map_congr_left
  intro k hk
  have hk' := List.mem_range.mp hk
  rw [Nat.zero_add, Nat.mod_eq_of_lt (by omega)]
  exact h k hk'

end Nyvela.Ring
