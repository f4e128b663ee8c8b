import Mathlib.Logic.Function.Basic
import Mathlib.Data.List.Nodup

/-!
# Singly linked lists in a store

`IsChain null next p l`: following `next` from `p` visits the cells of `l` in
order and then reaches `null`. Such a chain is finite, so it has no cycle.
-/

namespace Nyvela

variable {α : Type*} {null : α} {next : α → α}

def IsChain (null : α) (next : α → α) : α → List α → Prop
  | p, [] => p = null
  | p, c :: l => p = c ∧ c ≠ null ∧ IsChain null next (next c) l

namespace IsChain

theorem mem_ne_null {p : α} {l : List α} (h : IsChain null next p l) : ∀ c ∈ l, c ≠ null := by
  induction l generalizing p with
  | nil => simp
  | cons d l ih =>
    intro c hc
    rcases List.mem_cons.mp hc with rfl | hc
    · exact h.2.1
    · exact ih h.2.2 c hc

theorem unique {p : α} {l l' : List α} (h : IsChain null next p l)
    (h' : IsChain null next p l') : l = l' := by
  induction l generalizing p l' with
  | nil =>
    cases l' with
    | nil => rfl
    | cons c l' => exact absurd (h'.1.symm.trans h) h'.2.1
  | cons c l ih =>
    cases l' with
    | nil => exact absurd (h.1.symm.trans h') h.2.1
    | cons c' l' =>
      obtain rfl : c = c' := h.1.symm.trans h'.1
      rw [ih h.2.2 h'.2.2]

/-- The part of a chain from one of its cells on. -/
theorem of_append {p c : α} {l₁ l₂ : List α} (h : IsChain null next p (l₁ ++ c :: l₂)) :
    IsChain null next c (c :: l₂) := by
  induction l₁ generalizing p with
  | nil => exact ⟨rfl, h.2.1, h.2.2⟩
  | cons d l₁ ih => exact ih h.2.2

/-- A cell met twice would make the rest of the chain as long as the whole. -/
theorem nodup {p : α} {l : List α} (h : IsChain null next p l) : l.Nodup := by
  induction l generalizing p with
  | nil => exact List.nodup_nil
  | cons c l ih =>
    refine List.nodup_cons.mpr ⟨?_, ih h.2.2⟩
    intro hc
    obtain ⟨l₁, l₂, rfl⟩ := List.append_of_mem hc
    have hsub : IsChain null next c (c :: l₂) := of_append h.2.2
    have hall : IsChain null next c (c :: (l₁ ++ c :: l₂)) := ⟨rfl, h.2.1, h.2.2⟩
    have hlen := congrArg List.length (hsub.unique hall)
    simp only [List.length_cons, List.length_append] at hlen
    omega

theorem congr {next' : α → α} {p : α} {l : List α} (h : IsChain null next p l)
    (heq : ∀ c ∈ l, next' c = next c) : IsChain null next' p l := by
  induction l generalizing p with
  | nil => exact h
  | cons c l ih =>
    refine ⟨h.1, h.2.1, ?_⟩
    rw [heq c (by simp)]
    exact ih h.2.2 fun d hd => heq d (by simp [hd])

/-- Splice a fresh cell in behind the cell `c`. -/
theorem insert_after {next' : α → α} {p c n : α} {l₁ l₂ : List α}
    (h : IsChain null next p (l₁ ++ c :: l₂)) (hn : n ≠ null) (hfresh : n ∉ l₁ ++ c :: l₂)
    (hc : next' c = n) (hnn : next' n = next c)
    (heq : ∀ d ∈ l₁ ++ l₂, next' d = next d) :
    IsChain null next' p (l₁ ++ c :: n :: l₂) := by
  induction l₁ generalizing p with
  | nil =>
    refine ⟨h.1, h.2.1, ?_⟩
    rw [hc]
    refine ⟨rfl, hn, ?_⟩
    rw [hnn]
    exact h.2.2.congr fun d hd => heq d (by simpa using hd)
  | cons d l₁ ih =>
    refine ⟨h.1, h.2.1, ?_⟩
    rw [heq d (by simp)]
    exact ih h.2.2 (fun hm => hfresh (List.mem_cons_of_mem _ hm))
      fun e he => heq e (List.mem_cons_of_mem _ he)

end IsChain

end Nyvela
