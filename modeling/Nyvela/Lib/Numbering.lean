import Mathlib.Data.List.Count
import Mathlib.Data.List.Nodup
import Mathlib.Logic.Function.Basic

/-!
# A number for each picked index

What a loop leaves that goes through the indices below `n` and takes a new number for
each one that it picks.
-/

namespace Nyvela

/-- `made` holds the numbers `num i` of the picked indices below `n`, each of them once. -/
structure Numbering (pick : ℕ → Bool) (n : ℕ) (num : ℕ → ℕ) (made : List ℕ) : Prop where
  mem : ∀ i < n, pick i = true → num i ∈ made
  inj : ∀ i < n, ∀ j < n, pick i = true → pick j = true → num i = num j → i = j
  of_mem : ∀ f ∈ made, ∃ i < n, pick i = true ∧ num i = f
  nodup : made.Nodup

namespace Numbering

variable {pick : ℕ → Bool} {n : ℕ} {num : ℕ → ℕ} {made : List ℕ}

theorem zero (pick : ℕ → Bool) (num : ℕ → ℕ) : Numbering pick 0 num [] where
  mem i hi := absurd hi (by omega)
  inj i hi := absurd hi (by omega)
  of_mem := by simp
  nodup := List.nodup_nil

/-- No index is picked. -/
theorem nil (hpick : ∀ i < n, pick i = false) (num : ℕ → ℕ) : Numbering pick n num [] where
  mem i hi hp := by simp [hpick i hi] at hp
  inj i hi _ _ hp := by simp [hpick i hi] at hp
  of_mem := by simp
  nodup := List.nodup_nil

theorem skip (h : Numbering pick n num made) (hn : pick n = false) :
    Numbering pick (n + 1) num made := by
  have hlt : ∀ {i}, i < n + 1 → pick i = true → i < n := by
    intro i hi hp
    rcases Nat.lt_succ_iff_lt_or_eq.mp hi with hi | rfl
    · exact hi
    · simp [hn] at hp
  constructor
  case mem => exact fun i hi hp => h.mem i (hlt hi hp) hp
  case inj => exact fun i hi j hj hpi hpj => h.inj i (hlt hi hpi) j (hlt hj hpj) hpi hpj
  case of_mem =>
    intro f hf
    obtain ⟨i, hi, hp⟩ := h.of_mem f hf
    exact ⟨i, by omega, hp⟩
  case nodup => exact h.nodup

theorem take (h : Numbering pick n num made) (hn : pick n = true) {f : ℕ} (hf : f ∉ made) :
    Numbering pick (n + 1) (Function.update num n f) (f :: made) := by
  have hlt : ∀ {i}, i < n + 1 → i ≠ n → i < n := fun hi hne => by omega
  have hfresh : ∀ {i}, i < n → pick i = true → num i ≠ f := by
    rintro i hi hp rfl
    exact hf (h.mem i hi hp)
  constructor
  case mem =>
    intro i hi hp
    by_cases heq : i = n
    · rw [heq, Function.update_self]
      exact List.mem_cons_self
    · rw [Function.update_of_ne heq]
      exact List.mem_cons_of_mem _ (h.mem i (hlt hi heq) hp)
  case inj =>
    intro i hi j hj hpi hpj
    by_cases hin : i = n <;> by_cases hjn : j = n
    · exact fun _ => hin.trans hjn.symm
    · rw [hin, Function.update_self, Function.update_of_ne hjn]
      exact fun heq => absurd heq.symm (hfresh (hlt hj hjn) hpj)
    · rw [hjn, Function.update_self, Function.update_of_ne hin]
      exact fun heq => absurd heq (hfresh (hlt hi hin) hpi)
    · rw [Function.update_of_ne hin, Function.update_of_ne hjn]
      exact h.inj i (hlt hi hin) j (hlt hj hjn) hpi hpj
  case of_mem =>
    intro g hg
    rcases List.mem_cons.mp hg with rfl | hg
    · exact ⟨n, by omega, hn, Function.update_self ..⟩
    · obtain ⟨i, hi, hp, hnum⟩ := h.of_mem g hg
      exact ⟨i, by omega, hp, by rwa [Function.update_of_ne (by omega)]⟩
  case nodup => exact List.nodup_cons.mpr ⟨hf, h.nodup⟩

theorem congr {pick' : ℕ → Bool} (h : Numbering pick n num made)
    (hpick : ∀ i < n, pick' i = pick i) : Numbering pick' n num made where
  mem i hi hp := h.mem i hi (hpick i hi ▸ hp)
  inj i hi j hj hpi hpj := h.inj i hi j hj (hpick i hi ▸ hpi) (hpick j hj ▸ hpj)
  of_mem f hf := by
    obtain ⟨i, hi, hp, hnum⟩ := h.of_mem f hf
    exact ⟨i, hi, (hpick i hi).trans hp, hnum⟩
  nodup := h.nodup

theorem congr_num {num' : ℕ → ℕ} (h : Numbering pick n num made)
    (hnum : ∀ i < n, pick i = true → num' i = num i) : Numbering pick n num' made where
  mem i hi hp := hnum i hi hp ▸ h.mem i hi hp
  inj i hi j hj hpi hpj := by
    rw [hnum i hi hpi, hnum j hj hpj]
    exact h.inj i hi j hj hpi hpj
  of_mem f hf := by
    obtain ⟨i, hi, hp, heq⟩ := h.of_mem f hf
    exact ⟨i, hi, hp, (hnum i hi hp).trans heq⟩
  nodup := h.nodup

/-- An index is picked that was not. -/
theorem insert {pick' : ℕ → Bool} {num' : ℕ → ℕ} (h : Numbering pick n num made) {i : ℕ} (hi : i < n)
    (hpick : pick i = false) (hpick' : ∀ j < n, pick' j = (pick j || decide (j = i)))
    (hnum : ∀ j < n, pick j = true → num' j = num j) (hf : num' i ∉ made) :
    Numbering pick' n num' (num' i :: made) := by
  have hcases : ∀ {j}, j < n → pick' j = true → pick j = true ∨ j = i := by
    intro j hj hp
    simpa [hpick' j hj] using hp
  constructor
  case mem =>
    intro j hj hp
    rcases hcases hj hp with hp | rfl
    · rw [hnum j hj hp]
      exact List.mem_cons_of_mem _ (h.mem j hj hp)
    · exact List.mem_cons_self
  case inj =>
    intro j hj k hk hpj hpk heq
    rcases hcases hj hpj with hpj | rfl <;> rcases hcases hk hpk with hpk | rfl
    · rw [hnum j hj hpj, hnum k hk hpk] at heq
      exact h.inj j hj k hk hpj hpk heq
    · rw [← heq, hnum j hj hpj] at hf
      exact absurd (h.mem j hj hpj) hf
    · rw [heq, hnum k hk hpk] at hf
      exact absurd (h.mem k hk hpk) hf
    · rfl
  case of_mem =>
    intro f hmem
    rcases List.mem_cons.mp hmem with rfl | hmem
    · exact ⟨i, hi, by simp [hpick' i hi], rfl⟩
    · obtain ⟨j, hj, hp, rfl⟩ := h.of_mem f hmem
      exact ⟨j, hj, by simp [hpick' j hj, hp], hnum j hj hp⟩
  case nodup => exact List.nodup_cons.mpr ⟨hf, h.nodup⟩

/-- A picked index is picked no more. -/
theorem erase {pick' : ℕ → Bool} {num' : ℕ → ℕ} (h : Numbering pick n num made) {i : ℕ} (hi : i < n)
    (hpick : pick i = true) (hpick' : ∀ j < n, pick' j = (pick j && decide (j ≠ i)))
    (hnum : ∀ j < n, j ≠ i → num' j = num j) : Numbering pick' n num' (made.erase (num i)) := by
  have hcases : ∀ {j}, j < n → pick' j = true → pick j = true ∧ j ≠ i := by
    intro j hj hp
    simpa [hpick' j hj] using hp
  constructor
  case mem =>
    intro j hj hp
    obtain ⟨hp, hne⟩ := hcases hj hp
    rw [hnum j hj hne, h.nodup.mem_erase_iff]
    exact ⟨fun heq => hne (h.inj j hj i hi hp hpick heq), h.mem j hj hp⟩
  case inj =>
    intro j hj k hk hpj hpk heq
    obtain ⟨hpj, hnej⟩ := hcases hj hpj
    obtain ⟨hpk, hnek⟩ := hcases hk hpk
    rw [hnum j hj hnej, hnum k hk hnek] at heq
    exact h.inj j hj k hk hpj hpk heq
  case of_mem =>
    intro f hmem
    obtain ⟨hne, hmem⟩ := h.nodup.mem_erase_iff.mp hmem
    obtain ⟨j, hj, hp, rfl⟩ := h.of_mem f hmem
    have hji : j ≠ i := by
      rintro rfl
      exact hne rfl
    exact ⟨j, hj, by simp [hpick' j hj, hp, hji], hnum j hj hji⟩
  case nodup => exact h.nodup.erase _

theorem perm (h : Numbering pick n num made) : (((List.range n).filter pick).map num).Perm made := by
  refine (List.perm_ext_iff_of_nodup ?_ h.nodup).mpr fun f => ?_
  · refine List.Nodup.map_on ?_ (List.nodup_range.filter _)
    intro i hi j hj
    rw [List.mem_filter, List.mem_range] at hi hj
    exact h.inj i hi.1 j hj.1 hi.2 hj.2
  · simp only [List.mem_map, List.mem_filter, List.mem_range]
    constructor
    · rintro ⟨i, ⟨hi, hp⟩, rfl⟩
      exact h.mem i hi hp
    · intro hf
      obtain ⟨i, hi, hp, hnum⟩ := h.of_mem f hf
      exact ⟨i, ⟨hi, hp⟩, hnum⟩

theorem length_eq (h : Numbering pick n num made) : made.length = (List.range n).countP pick := by
  rw [← h.perm.length_eq, List.length_map, List.countP_eq_length_filter]

end Numbering

end Nyvela
