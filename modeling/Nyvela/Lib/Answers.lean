import Nyvela.Lib.Fuel

/-!
# Calls that answer for an abstract machine

A call of the concrete machine is compared with what the abstract one does: it returns the same
result and ends in a related state, it does not return because the abstract machine has no answer
either, or it reports one of the results that excuse it and nothing has happened.
-/

namespace Nyvela

variable {ρ σ ω : Type*}

inductive Answers (R : σ → ω → Prop) (w : ω) (excuse : ρ → Prop) (f : ℕ → Option (ρ × σ)) :
    Option (ρ × ω) → Prop
  | fault : (∃ n, ∀ fuel, n ≤ fuel → f fuel = none) → Answers R w excuse f none
  | done {r : ρ} {s : σ} {w' : ω} : Returns f (r, s) → R s w' → Answers R w excuse f (some (r, w'))
  | excused {r : ρ} {s : σ} {target : Option (ρ × ω)} :
    excuse r → Returns f (r, s) → R s w → Answers R w excuse f target

namespace Answers

variable {R : σ → ω → Prop} {w : ω} {excuse : ρ → Prop} {f : ℕ → Option (ρ × σ)}
  {target : Option (ρ × ω)}

/-- The call goes on behind a part of it that returns. -/
theorem bind {α : Type*} {p : ℕ → Option α} {g : α → ℕ → Option (ρ × σ)} {a : α}
    (hp : Returns p a) (h : Answers R w excuse (g a) target) :
    Answers R w excuse (fun fuel => (p fuel).bind fun a => g a fuel) target := by
  cases h with
  | fault hg =>
    obtain ⟨n, hn⟩ := hp
    obtain ⟨m, hm⟩ := hg
    refine .fault ⟨max n m, fun fuel hfuel => ?_⟩
    rw [hn fuel (by omega), Option.bind_some, hm fuel (by omega)]
  | done hg hR => exact .done (hp.bind hg) hR
  | excused he hg hR => exact .excused he (hp.bind hg) hR

/-- The call changes the state at its end. -/
theorem map {τ : Type*} {g : σ → τ} {R : τ → ω → Prop}
    (h : Answers (fun s w => R (g s) w) w excuse f target) :
    Answers R w excuse (fun fuel => (f fuel).map fun (r, s) => (r, g s)) target := by
  cases h with
  | fault hf =>
    obtain ⟨n, hn⟩ := hf
    exact .fault ⟨n, fun fuel hfuel => by rw [hn fuel hfuel, Option.map_none]⟩
  | done hf hR => exact .done (hf.map _) hR
  | excused he hf hR => exact .excused he (hf.map _) hR

/-- What the call returned is the answer or an excuse. -/
theorem of_returns (h : Answers R w excuse f target) {r : ρ} {s : σ} (hf : Returns f (r, s)) :
    (∃ w', target = some (r, w') ∧ R s w') ∨ excuse r ∧ R s w := by
  cases h with
  | fault hnot =>
    obtain ⟨n, hn⟩ := hf
    obtain ⟨m, hm⟩ := hnot
    have hnone := (hm (max n m) (by omega)).symm.trans (hn (max n m) (by omega))
    cases hnone
  | done hf' hR =>
    obtain ⟨rfl, rfl⟩ := Prod.mk.inj (hf.unique hf')
    exact Or.inl ⟨_, rfl, hR⟩
  | excused he hf' hR =>
    obtain ⟨rfl, rfl⟩ := Prod.mk.inj (hf.unique hf')
    exact Or.inr ⟨he, hR⟩

end Answers

end Nyvela
