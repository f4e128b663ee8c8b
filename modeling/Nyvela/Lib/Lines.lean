import Mathlib.Data.List.Basic

/-!
# Lines

Lists written one behind the other, each ended by a separator, and the text split at the
separators again.
-/

namespace Nyvela

variable {α : Type*} (sep : α)

def unlines (ls : List (List α)) : List α := ls.flatMap (· ++ [sep])

@[simp] theorem unlines_nil : unlines sep [] = [] := rfl

@[simp] theorem unlines_cons (l : List α) (ls : List (List α)) :
    unlines sep (l :: ls) = l ++ [sep] ++ unlines sep ls := rfl

theorem unlines_eq_intercalate (ls : List (List α)) :
    unlines sep ls = [sep].intercalate (ls ++ [[]]) := by
  induction ls with
  | nil => simp
  | cons l ls ih =>
    obtain ⟨l', ls', h⟩ : ∃ l' ls', ls ++ [[]] = l' :: ls' := List.exists_cons_of_ne_nil (by simp)
    rw [unlines_cons, ih, List.cons_append, h, List.intercalate_cons_cons]

variable [DecidableEq α]

/-- The pieces before each separator. -/
def lines (text : List α) : List (List α) := (text.splitOn sep).dropLast

theorem length_splitOn (text : List α) : (text.splitOn sep).length = text.count sep + 1 := by
  induction text with
  | nil => simp
  | cons c text ih =>
    rw [List.splitOn_cons_eq_if_modifyHead, List.count_cons]
    split_ifs with h
    · rw [List.length_cons, ih]
    · rw [List.length_modifyHead, ih]

theorem length_lines (text : List α) : (lines sep text).length = text.count sep := by
  rw [lines, List.length_dropLast, length_splitOn, Nat.add_sub_cancel]

variable {sep}

theorem lines_unlines {ls : List (List α)} (h : ∀ l ∈ ls, sep ∉ l) :
    lines sep (unlines sep ls) = ls := by
  rw [lines, unlines_eq_intercalate, List.splitOn_intercalate sep ?_ (by simp),
    List.dropLast_concat]
  intro l hl
  rcases List.mem_append.mp hl with hl | hl
  · exact h l hl
  · simp [List.mem_singleton.mp hl]

theorem le_count_unlines (ls : List (List α)) : ls.length ≤ (unlines sep ls).count sep := by
  induction ls with
  | nil => simp
  | cons l ls ih =>
    simp only [unlines_cons, List.count_append, List.count_singleton_self, List.length_cons]
    omega

/-- A line with a separator in it makes the text longer by a line. -/
theorem not_mem_of_count_unlines {ls : List (List α)} (h : (unlines sep ls).count sep = ls.length) :
    ∀ l ∈ ls, sep ∉ l := by
  induction ls with
  | nil => simp
  | cons l ls ih =>
    simp only [unlines_cons, List.count_append, List.count_singleton_self, List.length_cons] at h
    have hle : ls.length ≤ (unlines sep ls).count sep := le_count_unlines ls
    intro k hk
    rcases List.mem_cons.mp hk with rfl | hk
    · exact List.count_eq_zero.mp (by omega)
    · exact ih (by omega) k hk

/-- Splitting gives the lines back, in any order, only if the separator is in none of them. -/
theorem lines_unlines_perm_iff (ls : List (List α)) :
    (lines sep (unlines sep ls)).Perm ls ↔ ∀ l ∈ ls, sep ∉ l := by
  constructor
  · intro h
    apply not_mem_of_count_unlines
    rw [← length_lines, h.length_eq]
  · intro h
    rw [lines_unlines h]

end Nyvela
