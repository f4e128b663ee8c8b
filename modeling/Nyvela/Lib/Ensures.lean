import Mathlib.Tactic.TypeStar

/-!
# What a fallible computation ensures

A postcondition for each way that an `Except` computation can end.
-/

namespace Nyvela

variable {ε α β : Type*}

/-- If `x` returns then `post` holds of the result, and if it fails then `fail` does. -/
structure Ensures (x : Except ε α) (post : α → Prop) (fail : ε → Prop) : Prop where
  of_ok : ∀ a, x = .ok a → post a
  of_error : ∀ e, x = .error e → fail e

namespace Ensures

variable {x : Except ε α} {post : α → Prop} {fail fail' : ε → Prop}

theorem ok {a : α} (h : post a) : Ensures (.ok a) post fail where
  of_ok _ hb := Except.ok.inj hb ▸ h
  of_error _ he := nomatch he

theorem error {e : ε} (h : fail e) : Ensures (.error e) post fail where
  of_ok _ ha := nomatch ha
  of_error _ hc := Except.error.inj hc ▸ h

theorem bind {f : α → Except ε β} {post' : β → Prop} (h : Ensures x post fail)
    (hfail : ∀ e, fail e → fail' e) (hf : ∀ a, post a → Ensures (f a) post' fail') :
    Ensures (x.bind f) post' fail' := by
  cases x with
  | ok a => exact hf a (h.of_ok a rfl)
  | error e => exact error (hfail e (h.of_error e rfl))

theorem mono {post' : α → Prop} (h : Ensures x post fail) (hok : ∀ a, post a → post' a)
    (hfail : ∀ e, fail e → fail' e) : Ensures x post' fail' where
  of_ok a ha := hok a (h.of_ok a ha)
  of_error e he := hfail e (h.of_error e he)

end Ensures

end Nyvela
