import Mathlib.Tactic.TypeStar

/-!
# Transition systems and their runs

States, the labels of the steps, and one induction rule: what holds at the start
and survives every step holds in every reachable state.
-/

namespace Nyvela

structure System (σ α : Type*) where
  init : σ → Prop
  step : σ → α → σ → Prop

namespace System

variable {σ α : Type*}

/-- The states that some run reaches. -/
inductive Reachable (M : System σ α) : σ → Prop
  | init {s : σ} : M.init s → M.Reachable s
  | step {s s' : σ} {a : α} : M.Reachable s → M.step s a s' → M.Reachable s'

/-- A run from one state to another, with the labels of its steps in order. -/
inductive Run (M : System σ α) (s₀ : σ) : List α → σ → Prop
  | nil : M.Run s₀ [] s₀
  | snoc {l : List α} {s s' : σ} {a : α} : M.Run s₀ l s → M.step s a s' → M.Run s₀ (l ++ [a]) s'

/-- The same system, with only the steps that meet a condition on the state
before them and on their label. -/
def restrict (M : System σ α) (ok : σ → α → Prop) : System σ α where
  init := M.init
  step s a s' := ok s a ∧ M.step s a s'

theorem Reachable.invariant {M : System σ α} {inv : σ → Prop} (hinit : ∀ s, M.init s → inv s)
    (hstep : ∀ s a s', inv s → M.step s a s' → inv s') {s : σ} (h : M.Reachable s) : inv s := by
  induction h with
  | init hs => exact hinit _ hs
  | step _ hs ih => exact hstep _ _ _ ih hs

theorem Reachable.of_restrict {M : System σ α} {ok : σ → α → Prop} {s : σ}
    (h : (M.restrict ok).Reachable s) : M.Reachable s := by
  induction h with
  | init hs => exact .init hs
  | step _ hs ih => exact .step ih hs.2

theorem Reachable.run {M : System σ α} {s₀ s : σ} {l : List α} (h : M.Reachable s₀)
    (hrun : M.Run s₀ l s) : M.Reachable s := by
  induction hrun with
  | nil => exact h
  | snoc _ hs ih => exact ih.step hs

theorem Run.invariant {M : System σ α} {s₀ : σ} {p : List α → σ → Prop} (hinit : p [] s₀)
    (hstep : ∀ l s a s', p l s → M.step s a s' → p (l ++ [a]) s') {l : List α} {s : σ}
    (h : M.Run s₀ l s) : p l s := by
  induction h with
  | nil => exact hinit
  | snoc _ hs ih => exact hstep _ _ _ _ ih hs

/-- A property holds at every moment of a run of a function exactly when every step is one that
keeps it. -/
theorem foldl_moments_iff {step : σ → α → σ} {p : σ → Prop} {ok : α → Prop}
    (hkeep : ∀ s a, p s → ok a → p (step s a)) (hneed : ∀ s a, p (step s a) → ok a) {s : σ}
    (hs : p s) {l : List α} :
    (∀ l', l' <+: l → p (l'.foldl step s)) ↔ ∀ a ∈ l, ok a := by
  induction l generalizing s with
  | nil =>
    refine ⟨fun _ a ha => absurd ha List.not_mem_nil, fun _ l' hl' => ?_⟩
    rw [List.prefix_nil.mp hl']
    exact hs
  | cons a l ih =>
    constructor
    · intro h
      have ha : p (step s a) := h [a] ⟨l, rfl⟩
      have hrest := (ih ha).mp fun l' hl' => h (a :: l') ((List.prefix_cons_inj a).mpr hl')
      exact List.forall_mem_cons.mpr ⟨hneed s a ha, hrest⟩
    · intro h l' hl'
      obtain ⟨ha, hrest⟩ := List.forall_mem_cons.mp h
      cases l' with
      | nil => exact hs
      | cons b l' =>
        obtain ⟨rfl, htail⟩ := List.cons_prefix_cons.mp hl'
        exact (ih (hkeep s b hs ha)).mpr hrest l' htail

end System

end Nyvela
