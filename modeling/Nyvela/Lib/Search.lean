import Mathlib.Order.Bounds.Basic

/-!
# Linear search loops

`searchUp` is `for (i = first; cond(i); i++) if (found(i)) return i;` and
`searchDown` is `for (i = last; i-- > first;) if (found(i)) return i;`. The first
takes fuel; it never stops for want of it once the guard fails within reach.
-/

namespace Nyvela

def searchUp (cond found : ℕ → Bool) : ℕ → ℕ → Option ℕ
  | 0, _ => none
  | fuel + 1, i =>
    if cond i then if found i then some i else searchUp cond found fuel (i + 1) else none

def searchDown (found : ℕ → Bool) (first : ℕ) : ℕ → Option ℕ
  | 0 => none
  | i + 1 =>
    if first < i + 1 then if found i then some i else searchDown found first i else none

/-- The numbers an upward loop from `i` may return. -/
def upward (cond found : ℕ → Bool) (i : ℕ) : Set ℕ :=
  {j | i ≤ j ∧ (∀ k, i ≤ k → k ≤ j → cond k = true) ∧ found j = true}

theorem isLeast_upward_self {cond found : ℕ → Bool} {i : ℕ} (hc : cond i = true)
    (hf : found i = true) : IsLeast (upward cond found i) i := by
  refine ⟨⟨le_rfl, ?_, hf⟩, fun j hj => hj.1⟩
  intro k hik hki
  rwa [le_antisymm hki hik]

theorem upward_succ {cond found : ℕ → Bool} {i : ℕ} (hc : cond i = true)
    (hf : found i = false) : upward cond found i = upward cond found (i + 1) := by
  ext j
  constructor
  · rintro ⟨hij, hall, hj⟩
    have hne : i ≠ j := fun h => by simp [h, hj] at hf
    exact ⟨by omega, fun k hik hkj => hall k (by omega) hkj, hj⟩
  · rintro ⟨hij, hall, hj⟩
    refine ⟨by omega, fun k hik hkj => ?_, hj⟩
    by_cases hk : k = i
    · rwa [hk]
    · exact hall k (by omega) hkj

theorem upward_eq_empty {cond found : ℕ → Bool} {i : ℕ} (hc : cond i = false) :
    upward cond found i = ∅ := by
  ext j
  simp only [Set.mem_empty_iff_false, iff_false]
  rintro ⟨hij, hall, -⟩
  simp [hall i le_rfl hij] at hc

/-- With fuel up to the point where the guard fails, the loop returns the least
candidate, and nothing only when there is none. -/
theorem searchUp_spec (cond found : ℕ → Bool) (fuel i : ℕ)
    (hstop : ∃ k < fuel, cond (i + k) = false) :
    (∃ j, searchUp cond found fuel i = some j ∧ IsLeast (upward cond found i) j) ∨
      (searchUp cond found fuel i = none ∧ upward cond found i = ∅) := by
  induction fuel generalizing i with
  | zero => obtain ⟨k, hk, -⟩ := hstop; omega
  | succ fuel ih =>
    obtain ⟨k, hk, hck⟩ := hstop
    unfold searchUp
    cases hc : cond i with
    | false => exact Or.inr ⟨by simp, upward_eq_empty hc⟩
    | true =>
      cases hf : found i with
      | true => exact Or.inl ⟨i, by simp, isLeast_upward_self hc hf⟩
      | false =>
        rw [upward_succ hc hf]
        have hk0 : k ≠ 0 := by rintro rfl; simp [hc] at hck
        have hstop' : ∃ k < fuel, cond (i + 1 + k) = false :=
          ⟨k - 1, by omega, by rwa [show i + 1 + (k - 1) = i + k by omega]⟩
        simpa using ih (i + 1) hstop'

theorem searchDown_spec (found : ℕ → Bool) (first last : ℕ) :
    (∃ j, searchDown found first last = some j ∧
        IsGreatest {j | first ≤ j ∧ j < last ∧ found j = true} j) ∨
      (searchDown found first last = none ∧
        {j | first ≤ j ∧ j < last ∧ found j = true} = ∅) := by
  induction last with
  | zero =>
    refine Or.inr ⟨rfl, ?_⟩
    ext j
    simp
  | succ i ih =>
    unfold searchDown
    by_cases hi : first < i + 1
    · cases hf : found i with
      | true =>
        refine Or.inl ⟨i, by simp [hi], ⟨by omega, by omega, hf⟩, ?_⟩
        rintro j ⟨-, hj, -⟩
        omega
      | false =>
        have heq : {j | first ≤ j ∧ j < i + 1 ∧ found j = true} =
            {j | first ≤ j ∧ j < i ∧ found j = true} := by
          ext j
          constructor
          · rintro ⟨h1, h2, h3⟩
            have hne : j ≠ i := by rintro rfl; simp [h3] at hf
            exact ⟨h1, by omega, h3⟩
          · rintro ⟨h1, h2, h3⟩
            exact ⟨h1, by omega, h3⟩
        rw [heq, if_pos hi, if_neg Bool.false_ne_true]
        exact ih
    · refine Or.inr ⟨by simp [hi], ?_⟩
      ext j
      simp only [Set.mem_ofPred_eq, Set.mem_empty_iff_false, iff_false]
      omega

end Nyvela
