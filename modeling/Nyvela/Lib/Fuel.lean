import Mathlib.Algebra.Group.Nat.Defs
import Mathlib.Data.Nat.Notation
import Mathlib.Tactic.TypeStar

/-!
# Functions with fuel

A loop is modelled with a number of rounds it may take, `none` standing for a
number that was too small. `Returns f r` says that every large enough number
gives the result `r`.
-/

namespace Nyvela

variable {α β : Type*}

def Returns (f : ℕ → Option α) (r : α) : Prop := ∃ n, ∀ fuel, n ≤ fuel → f fuel = some r

namespace Returns

theorem unique {f : ℕ → Option α} {r r' : α} (h : Returns f r) (h' : Returns f r') : r = r' := by
  obtain ⟨n, hn⟩ := h
  obtain ⟨m, hm⟩ := h'
  have heq := (hn (max n m) (Nat.le_max_left ..)).symm.trans (hm (max n m) (Nat.le_max_right ..))
  exact Option.some.inj heq

theorem exists_fuel {f : ℕ → Option α} {r : α} (h : Returns f r) : ∃ fuel, f fuel = some r := by
  obtain ⟨n, hn⟩ := h
  exact ⟨n, hn n (Nat.le_refl n)⟩

theorem const (r : α) : Returns (fun _ => some r) r := ⟨0, fun _ _ => rfl⟩

theorem congr {f g : ℕ → Option α} {r : α} (h : Returns f r) (heq : ∀ fuel, g fuel = f fuel) :
    Returns g r := by
  obtain ⟨n, hn⟩ := h
  exact ⟨n, fun fuel hf => (heq fuel).trans (hn fuel hf)⟩

theorem bind {f : ℕ → Option α} {g : α → ℕ → Option β} {a : α} {r : β} (hf : Returns f a)
    (hg : Returns (g a) r) : Returns (fun fuel => (f fuel).bind fun a => g a fuel) r := by
  obtain ⟨n, hn⟩ := hf
  obtain ⟨m, hm⟩ := hg
  refine ⟨max n m, fun fuel hfuel => ?_⟩
  simp only [hn fuel (by omega), Option.bind_some]
  exact hm fuel (by omega)

/-- What a call returns is what the rest returns behind its first part. -/
theorem of_bind {f : ℕ → Option α} {g : α → ℕ → Option β} {a : α} {r : β} (hf : Returns f a)
    (h : Returns (fun fuel => (f fuel).bind fun a => g a fuel) r) : Returns (g a) r := by
  obtain ⟨n, hn⟩ := hf
  obtain ⟨m, hm⟩ := h
  refine ⟨max n m, fun fuel hfuel => ?_⟩
  simpa only [hn fuel (by omega), Option.bind_some] using hm fuel (by omega)

theorem map {f : ℕ → Option α} {a : α} (hf : Returns f a) (g : α → β) :
    Returns (fun fuel => (f fuel).map g) (g a) := by
  obtain ⟨n, hn⟩ := hf
  exact ⟨n, fun fuel hfuel => congrArg (Option.map g) (hn fuel hfuel)⟩

theorem exists_bind {f : ℕ → Option α} {g : α → ℕ → Option β} (hf : ∃ a, Returns f a)
    (hg : ∀ a fuel, f fuel = some a → ∃ r, Returns (g a) r) :
    ∃ r, Returns (fun fuel => (f fuel).bind fun a => g a fuel) r := by
  obtain ⟨a, n, hn⟩ := hf
  obtain ⟨r, hr⟩ := hg a n (hn n (Nat.le_refl n))
  exact ⟨r, bind ⟨n, hn⟩ hr⟩

theorem exists_map {f : ℕ → Option α} (hf : ∃ a, Returns f a) (g : α → β) :
    ∃ r, Returns (fun fuel => (f fuel).map g) r := by
  obtain ⟨a, ha⟩ := hf
  exact ⟨g a, ha.map g⟩

/-- One round of a loop. -/
theorem succ {f g : ℕ → Option α} {r : α} (heq : ∀ fuel, f (fuel + 1) = g fuel)
    (hg : Returns g r) : Returns f r := by
  obtain ⟨n, hn⟩ := hg
  refine ⟨n + 1, fun fuel hfuel => ?_⟩
  obtain ⟨k, rfl⟩ : ∃ k, fuel = k + 1 := ⟨fuel - 1, by omega⟩
  rw [heq]
  exact hn k (by omega)

end Returns

end Nyvela
